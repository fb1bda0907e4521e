import PeerToPeer.Parsing.NumberText
import PeerToPeer.Parsing.Safe
import PeerToPeer.Parsing.StringText

namespace PeerToPeer.Parsing

open CLib

theorem Blanks.skipped (b : Blanks) : ∀ c ∈ b.chars, c ≤ 32 := by
  intro c hc
  rcases b.blank c hc with rfl | rfl | rfl | rfl <;> decide

section Dispatch

variable {content tail : List UInt8} {offset : Nat} {c : UInt8}
  {array object : Nat → ParseM (Parsed Json)}

theorem literalAt_drop {lit : CString} (hlit : lit.chars ≠ [])
    (h : content.drop offset = lit.chars ++ tail) : literalAt content offset lit = true := by
  have hpos := List.length_pos_of_ne_nil hlit
  have hlen := congrArg List.length h
  rw [List.length_drop, List.length_append] at hlen
  rw [literalAt, h, List.take_left, Bool.and_eq_true, decide_eq_true_eq]
  exact ⟨by omega, by simp⟩

theorem literalAt_other {lit : CString} {d : UInt8} {ds : List UInt8} (hlit : lit.chars = d :: ds)
    (h : content.drop offset = c :: tail) (hc : c ≠ d) : literalAt content offset lit = false := by
  have htake : (content.drop offset).take lit.chars.length ≠ lit.chars := by
    rw [h, hlit, List.length_cons, List.take_succ_cons]
    exact fun he => hc (List.cons.inj he).1
  rw [literalAt, decide_eq_false htake, Bool.and_false]

/-- A character that begins no literal. -/
theorem parseLiterals_other (h : content.drop offset = c :: tail) (hnull : c ≠ 0x6E)
    (hfalse : c ≠ 0x66) (htrue : c ≠ 0x74) :
    parseLiterals content array object offset = parseOther content array object offset := by
  rw [parseLiterals, literalAt_other rfl h hnull, literalAt_other rfl h hfalse,
    literalAt_other rfl h htrue]
  rfl

theorem parseLiterals_string (h : content.drop offset = quote :: tail) :
    parseLiterals content array object offset =
      parseString content offset >>= fun r => .ok (r.1.map Json.string, r.2) := by
  rw [parseLiterals_other h (by decide) (by decide) (by decide), parseOther, getElem?_of_drop h]
  rfl

theorem parseLiterals_number (h : content.drop offset = c :: tail)
    (hc : c = 0x2D ∨ isDigit c = true) :
    parseLiterals content array object offset = .ok (parseNumber content offset) := by
  have hother : c ≠ 0x6E ∧ c ≠ 0x66 ∧ c ≠ 0x74 ∧ c ≠ quote := by
    refine ⟨?_, ?_, ?_, ?_⟩ <;>
    · rintro rfl
      revert hc
      decide
  obtain ⟨hnull, hfalse, htrue, hquote⟩ := hother
  rw [parseLiterals_other h hnull hfalse htrue, parseOther, getElem?_of_drop h]
  dsimp only
  rw [if_neg hquote, if_pos hc]

theorem parseLiterals_array (h : content.drop offset = openBracket :: tail) :
    parseLiterals content array object offset = array offset := by
  rw [parseLiterals_other h (by decide) (by decide) (by decide), parseOther, getElem?_of_drop h]
  rfl

theorem parseLiterals_object (h : content.drop offset = openBrace :: tail) :
    parseLiterals content array object offset = object offset := by
  rw [parseLiterals_other h (by decide) (by decide) (by decide), parseOther, getElem?_of_drop h]
  rfl

end Dispatch

/-- A byte that no value begins with: a blank, a bracket that closes, or one beyond ASCII. -/
def NoHead (c : UInt8) : Prop := c ≤ 32 ∨ c = closeBracket ∨ c = closeBrace ∨ 0x80 ≤ c

instance (c : UInt8) : Decidable (NoHead c) := inferInstanceAs (Decidable (_ ∨ _))

theorem WrittenNumber.text_head (n : WrittenNumber) :
    ∃ c tail, n.text = c :: tail ∧ (c = 0x2D ∨ isDigit c = true) := by
  unfold text
  cases n.negative with
  | true => exact ⟨0x2D, _, rfl, .inl rfl⟩
  | false =>
    obtain ⟨c, ds, hint⟩ := List.exists_cons_of_ne_nil n.nonempty
    refine ⟨c, ds ++ (n.fractionText ++ n.exponentText), by rw [hint]; rfl, .inr (n.isInt c ?_)⟩
    rw [hint]
    exact List.mem_cons_self

theorem Written.text_head (w : Written) : ∃ c tail, w.text = c :: tail ∧ ¬ NoHead c := by
  cases w with
  | null => exact ⟨_, _, rfl, by decide⟩
  | bool b => cases b <;> exact ⟨_, _, rfl, by decide⟩
  | number n =>
    obtain ⟨c, tail, htext, hc⟩ := n.text_head
    refine ⟨c, tail, by rw [Written.text, htext], ?_⟩
    rcases hc with rfl | hdigit
    · decide
    · rw [isDigit, Bool.and_eq_true, decide_eq_true_eq, decide_eq_true_eq] at hdigit
      intro hhead
      rcases hhead with hle | rfl | rfl | hge
      · exact absurd (UInt8.le_trans hdigit.1 hle) (by decide)
      · exact absurd hdigit (by decide)
      · exact absurd hdigit (by decide)
      · exact absurd (UInt8.le_trans hge hdigit.2) (by decide)
  | string s => exact ⟨quote, _, by rw [Written.text, WrittenString.text], by decide⟩
  | emptyArray blanks => exact ⟨openBracket, _, by rw [Written.text], by decide⟩
  | array before elements => exact ⟨openBracket, _, by rw [Written.text], by decide⟩
  | emptyObject blanks => exact ⟨openBrace, _, by rw [Written.text], by decide⟩
  | object before members => exact ⟨openBrace, _, by rw [Written.text], by decide⟩

theorem Elements.text_head (e : Elements) : ∃ c tail, e.text = c :: tail ∧ ¬ NoHead c := by
  cases e with
  | last v after =>
    obtain ⟨c, tail, htext, hc⟩ := v.text_head
    exact ⟨c, _, by rw [Elements.text, htext, List.cons_append], hc⟩
  | cons v after before rest =>
    obtain ⟨c, tail, htext, hc⟩ := v.text_head
    exact ⟨c, _, by rw [Elements.text, htext, List.cons_append], hc⟩

theorem Members.text_head (m : Members) : ∃ c tail, m.text = c :: tail ∧ ¬ NoHead c := by
  cases m with
  | last name v after => exact ⟨quote, _, by rw [Members.text, Name.text, WrittenString.text,
      List.cons_append, List.cons_append], by decide⟩
  | cons name v after before rest => exact ⟨quote, _, by rw [Members.text, Name.text,
      WrittenString.text, List.cons_append, List.cons_append], by decide⟩

/-- What a parse function that returns has made of the text up to `stop`: the item, if that nests
no deeper than there is room, and nothing otherwise. -/
def Reads {α : Type} (fits : Prop) (x : α) (stop : Nat) (r : Parsed α) : Prop :=
  (fits → r = (some x, stop)) ∧ (¬ fits → r.1 = none)

theorem reads_of {α : Type} {fits : Prop} {x : α} {stop : Nat} {r : Parsed α} (h : fits)
    (hr : r = (some x, stop)) : Reads fits x stop r := ⟨fun _ => hr, fun h' => absurd h h'⟩

theorem Reads.map {α β : Type} {fits fits' : Prop} {x : α} {stop : Nat} {r : Parsed α}
    (h : Reads fits x stop r) (f : α → β) (hfits : fits' ↔ fits) :
    Reads fits' (f x) stop (r.1.map f, r.2) := by
  constructor
  · intro hf
    rw [h.1 (hfits.mp hf)]
    rfl
  · intro hf
    rw [h.2 fun hf' => hf (hfits.mpr hf')]
    rfl

/-- What comes behind a value in an array or an object is no part of a number. -/
theorem stops_blanks (after : Blanks) {c : UInt8} (hc : isNumberChar c = false)
    (rest : List UInt8) : Stops (after.chars ++ c :: rest) := by
  intro d hd
  cases hafter : after.chars with
  | nil =>
    obtain rfl : c = d := by simpa [hafter] using hd
    exact hc
  | cons b bs =>
    obtain rfl : b = d := by simpa [hafter] using hd
    rcases after.blank b (by simp [hafter]) with rfl | rfl | rfl | rfl <;> decide

section Skips

variable {content rest : List UInt8} {offset : Nat} {c : UInt8}

/-- Nothing is skipped at a token. -/
theorem skip_none (h : content.drop offset = c :: rest) (hc : ¬ c ≤ 32) :
    bufferSkipWhitespace content offset = offset := by
  rw [← List.nil_append (c :: rest)] at h
  exact bufferSkipWhitespace_stops (by simp) hc h

theorem skip_blanks (b : Blanks) (h : content.drop offset = b.chars ++ c :: rest) (hc : ¬ c ≤ 32) :
    bufferSkipWhitespace content offset = offset + b.chars.length :=
  bufferSkipWhitespace_stops b.skipped hc h

end Skips

/-- A loop that returns has read an item. -/
theorem itemsLoop_ok {content : List UInt8} {α : Type} {parseItem : Nat → ParseM (Parsed α)}
    {fuel offset : Nat} {r : Parsed (List α)}
    (h : itemsLoop content parseItem fuel offset = .ok r) :
    ∃ k, fuel = k + 1 ∧ ∃ found, parseItem offset = .ok found ∧
      (match found.1 with
      | none => .ok (none, found.2)
      | some item =>
        if content[bufferSkipWhitespace content found.2]? = some comma then
          itemsLoop content parseItem k (bufferSkipWhitespace content found.2) >>= fun r =>
            .ok (r.1.map (item :: ·), r.2)
        else .ok (some [item], bufferSkipWhitespace content found.2) :
        ParseM (Parsed (List α))) = .ok r := by
  cases fuel with
  | zero => cases h
  | succ k =>
    rw [itemsLoop] at h
    obtain ⟨found, hfound, hrest⟩ := bind_eq_ok.mp h
    exact ⟨k, rfl, found, hfound, hrest⟩

section Items

variable {content rest : List UInt8} {α : Type} {parseItem : Nat → ParseM (Parsed α)}
  {fuel offset stop : Nat} {fits : Prop} {x : α} {after : Blanks}
  (hitem : ∀ r, parseItem offset = .ok r → Reads fits x stop r)
include hitem

/-- The last item: the loop ends at the token behind it. -/
theorem itemsLoop_last {c : UInt8} {r : Parsed (List α)} (hsolid : ¬ c ≤ 32) (hc : c ≠ comma)
    (h : content.drop stop = after.chars ++ c :: rest)
    (hr : itemsLoop content parseItem fuel offset = .ok r) :
    Reads fits [x] (stop + after.chars.length) r := by
  obtain ⟨fuel, rfl, ⟨item, o⟩, hfound, hr⟩ := itemsLoop_ok hr
  obtain ⟨hfits, hdeep⟩ := hitem _ hfound
  constructor
  · intro hroom
    obtain ⟨rfl, rfl⟩ := Prod.mk.inj (hfits hroom)
    dsimp only at hr
    rw [skip_blanks after h hsolid, getElem?_of_drop (drop_add_of_drop h),
      if_neg (by simpa using hc)] at hr
    exact (Except.ok.inj hr).symm
  · intro hroom
    obtain rfl : item = none := hdeep hroom
    rw [← Except.ok.inj hr]

/-- An item with a comma behind it: the loop goes on at the comma. -/
theorem itemsLoop_cons {fits' : Prop} {xs : List α} {stop' : Nat} {r : Parsed (List α)}
    (h : content.drop stop = after.chars ++ comma :: rest)
    (hrest : ∀ fuel r, itemsLoop content parseItem fuel (stop + after.chars.length) = .ok r →
      Reads fits' xs stop' r)
    (hr : itemsLoop content parseItem fuel offset = .ok r) :
    Reads (fits ∧ fits') (x :: xs) stop' r := by
  obtain ⟨fuel, rfl, ⟨item, o⟩, hfound, hr⟩ := itemsLoop_ok hr
  obtain ⟨hfits, hdeep⟩ := hitem _ hfound
  by_cases hroom : fits
  · obtain ⟨rfl, rfl⟩ := Prod.mk.inj (hfits hroom)
    dsimp only at hr
    rw [skip_blanks after h (by decide), getElem?_of_drop (drop_add_of_drop h), if_pos rfl] at hr
    obtain ⟨found, hmore, hr⟩ := bind_eq_ok.mp hr
    rw [← Except.ok.inj hr]
    exact (hrest _ _ hmore).map (x :: ·) (and_iff_right hroom)
  · obtain rfl : item = none := hdeep hroom
    refine ⟨fun hboth => absurd hboth.1 hroom, fun _ => ?_⟩
    rw [← Except.ok.inj hr]

end Items

theorem Reads.congr {α : Type} {fits fits' : Prop} {x : α} {stop stop' : Nat} {r : Parsed α}
    (h : Reads fits x stop r) (hfits : fits' ↔ fits) (hstop : stop' = stop) :
    Reads fits' x stop' r := by
  rw [hstop]
  exact ⟨fun hf => h.1 (hfits.mp hf), fun hf => h.2 fun hf' => hf (hfits.mpr hf')⟩

section Brackets

variable {content rest : List UInt8} {α : Type} {parseItem : Nat → ParseM (Parsed α)}
  {wrap : List α → Json} {close : UInt8} {offset : Nat} {r : Parsed Json} (hclose : ¬ close ≤ 32)
include hclose

theorem parseItems_empty {blanks : Blanks}
    (h : content.drop (offset + 1) = blanks.chars ++ close :: rest)
    (hr : parseItems content parseItem close wrap offset = .ok r) :
    r = (some (wrap []), offset + (blanks.chars.length + 2)) := by
  rw [parseItems, skip_blanks blanks h hclose] at hr
  dsimp only at hr
  rw [getElem?_of_drop (drop_add_of_drop h), if_pos rfl] at hr
  rw [← Except.ok.inj hr, show offset + 1 + blanks.chars.length + 1 =
    offset + (blanks.chars.length + 2) by omega]

/-- The loop starts one character in front of the first item. -/
theorem parseItems_written {before : Blanks} {text tail : List UInt8} {c : UInt8} {fits : Prop}
    {xs : List α} (htext : text = c :: tail) (hc : ¬ NoHead c) (hsame : NoHead close)
    (h : content.drop (offset + 1) = before.chars ++ (text ++ close :: rest))
    (hloop : ∀ fuel o r, bufferSkipWhitespace content (o + 1) = offset + 1 + before.chars.length →
      itemsLoop content parseItem fuel o = .ok r →
      Reads fits xs (offset + 1 + before.chars.length + text.length) r)
    (hr : parseItems content parseItem close wrap offset = .ok r) :
    Reads fits (wrap xs) (offset + (before.chars.length + (text.length + 2))) r := by
  have hsolid : ¬ c ≤ 32 := fun hle => hc (.inl hle)
  have hother : c ≠ close := by
    rintro rfl
    exact hc hsame
  have hfirst := drop_add_of_drop h
  have hbehind := drop_add_of_drop hfirst
  rw [htext, List.cons_append] at h hfirst
  have hlt := lt_of_drop hfirst
  have hback : offset + 1 + before.chars.length - 1 + 1 = offset + 1 + before.chars.length := by
    omega
  have hskip : bufferSkipWhitespace content (offset + 1 + before.chars.length - 1 + 1) =
      offset + 1 + before.chars.length := by
    rw [hback]
    exact skip_none hfirst hsolid
  rw [parseItems, skip_blanks before h hsolid] at hr
  dsimp only at hr
  rw [getElem?_of_drop hfirst, if_neg (by simpa using hother), if_neg (by omega)] at hr
  obtain ⟨⟨items, o⟩, hfound, hr⟩ := bind_eq_ok.mp hr
  obtain ⟨hfits, hdeep⟩ := hloop _ _ _ hskip hfound
  constructor
  · intro hroom
    obtain ⟨rfl, rfl⟩ := Prod.mk.inj (hfits hroom)
    dsimp only at hr
    rw [getElem?_of_drop hbehind, if_pos rfl] at hr
    rw [← Except.ok.inj hr, show offset + 1 + before.chars.length + text.length + 1 =
      offset + (before.chars.length + (text.length + 2)) by omega]
  · intro hroom
    obtain rfl : items = none := hdeep hroom
    rw [← Except.ok.inj hr]

end Brackets

/-- A member is read up to the end of its value. -/
theorem parseMember_written {content rest : List UInt8} {pv : Nat → ParseM (Parsed Json)}
    {offset start : Nat} {fits : Prop} {x : Json} {stop : Nat} {r : Parsed (CString × Json)}
    (name : Name) {c : UInt8} (hc : ¬ c ≤ 32)
    (hskip : bufferSkipWhitespace content (offset + 1) = start)
    (h : content.drop start = name.text ++ c :: rest)
    (hvalue : ∀ r, pv (start + name.text.length) = .ok r → Reads fits x stop r)
    (hr : parseMember content pv offset = .ok r) :
    Reads fits (WrittenString.value name.name, x) stop r := by
  rw [Name.text, List.append_assoc, List.append_assoc] at h
  have hname := drop_add_of_drop h
  have hcolon := drop_add_of_drop hname
  have hbefore := drop_succ_of_drop hcolon
  have hinside : ¬ content.length ≤ offset + 1 := by
    intro hle
    have hlt := lt_of_drop (h.trans (by rw [WrittenString.text, List.cons_append]))
    rw [bufferSkipWhitespace, if_pos hle] at hskip
    omega
  rw [parseMember, if_neg hinside, hskip] at hr
  obtain ⟨found, hstring, hr⟩ := bind_eq_ok.mp hr
  obtain rfl := parseString_written name.name h hstring
  dsimp only at hr
  rw [skip_blanks name.after hname (by decide), getElem?_of_drop hcolon, if_neg (by simp),
    skip_blanks name.before hbefore hc] at hr
  obtain ⟨found, hfound, hr⟩ := bind_eq_ok.mp hr
  rw [← Except.ok.inj hr]
  refine (hvalue found ?_).map (WrittenString.value name.name, ·) Iff.rfl
  rw [← hfound]
  congr 1
  simp only [Name.text, List.length_append, List.length_cons]
  omega

def Written.IsNumber : Written → Prop
  | .number _ => True
  | _ => False

section Values

variable {content tail : List UInt8} {room offset stop : Nat} {r : Parsed Json}

theorem parseValue_eq (content : List UInt8) (room : Nat) :
    ∃ array object, parseValue content room = parseLiterals content array object := by
  cases room with
  | zero => exact ⟨_, _, rfl⟩
  | succ room => exact ⟨_, _, rfl⟩

theorem parseLiterals_null {array object : Nat → ParseM (Parsed Json)}
    (h : content.drop offset = (CString.lit "null").chars ++ tail) :
    parseLiterals content array object offset = .ok (some .null, offset + 4) := by
  rw [parseLiterals, literalAt_drop (by decide) h]
  rfl

theorem parseLiterals_bool {array object : Nat → ParseM (Parsed Json)} {b : Bool}
    (h : content.drop offset = (Written.bool b).text ++ tail) :
    parseLiterals content array object offset =
      .ok (some (.bool b), offset + (Written.bool b).text.length) := by
  cases b with
  | true =>
    have htext : content.drop offset = (CString.lit "true").chars ++ tail := h
    have hnull : literalAt content offset (.lit "null") = false :=
      literalAt_other rfl htext (by decide)
    have hfalse : literalAt content offset (.lit "false") = false :=
      literalAt_other rfl htext (by decide)
    rw [parseLiterals, hnull, hfalse, literalAt_drop (by decide) htext]
    rfl
  | false =>
    have htext : content.drop offset = (CString.lit "false").chars ++ tail := h
    have hnull : literalAt content offset (.lit "null") = false :=
      literalAt_other rfl htext (by decide)
    rw [parseLiterals, hnull, literalAt_drop (by decide) htext]
    rfl

/-- An array nests one level deeper than its elements, and where no level is left it is given
up. -/
theorem parseValue_array {items : List Json} (h : content.drop offset = openBracket :: tail)
    (hr : parseValue content room offset = .ok r)
    (hitems : ∀ {room}, parseItems content (parseElement content (parseValue content room))
      closeBracket .array offset = .ok r →
      Reads (itemsDepth items ≤ room) (.array items) stop r) :
    Reads (depth (.array items) ≤ room) (.array items) stop r := by
  cases room with
  | zero =>
    rw [parseValue, parseLiterals_array h] at hr
    obtain rfl := Except.ok.inj hr
    exact ⟨fun hf => absurd hf (Nat.not_succ_le_zero _), fun _ => rfl⟩
  | succ room =>
    rw [parseValue, parseLiterals_array h, parseArray, readAt_ok (getElem?_of_drop h), ok_bind,
      if_neg (by simp)] at hr
    exact (hitems hr).congr Nat.succ_le_succ_iff rfl

theorem parseValue_object {members : List (CString × Json)}
    (h : content.drop offset = openBrace :: tail) (hr : parseValue content room offset = .ok r)
    (hmembers : ∀ {room}, parseItems content (parseMember content (parseValue content room))
      closeBrace .object offset = .ok r →
      Reads (membersDepth members ≤ room) (.object members) stop r) :
    Reads (depth (.object members) ≤ room) (.object members) stop r := by
  cases room with
  | zero =>
    rw [parseValue, parseLiterals_object h] at hr
    obtain rfl := Except.ok.inj hr
    exact ⟨fun hf => absurd hf (Nat.not_succ_le_zero _), fun _ => rfl⟩
  | succ room =>
    rw [parseValue, parseLiterals_object h, parseObject, getElem?_of_drop h, if_neg (by simp)] at hr
    exact (hmembers hr).congr Nat.succ_le_succ_iff rfl

end Values

mutual

/-- `parse_value` reads a value as it is written, if it nests no deeper than there is room, and
gives up otherwise. -/
theorem parseValue_written {content rest : List UInt8} {room offset : Nat} {r : Parsed Json} :
    ∀ w : Written, content.drop offset = w.text ++ rest → (w.IsNumber → Stops rest) →
      parseValue content room offset = .ok r →
      Reads (depth w.value ≤ room) w.value (offset + w.text.length) r
  | .null, h, _, hr => by
    obtain ⟨array, object, heq⟩ := parseValue_eq content room
    rw [heq, parseLiterals_null h] at hr
    exact reads_of (Nat.zero_le room) (Except.ok.inj hr).symm
  | .bool b, h, _, hr => by
    obtain ⟨array, object, heq⟩ := parseValue_eq content room
    rw [heq, parseLiterals_bool h] at hr
    exact reads_of (Nat.zero_le room) (Except.ok.inj hr).symm
  | .number n, h, hstops, hr => by
    obtain ⟨array, object, heq⟩ := parseValue_eq content room
    obtain ⟨c, tail, htext, hc⟩ := n.text_head
    have hhead : content.drop offset = c :: (tail ++ rest) := h.trans (by
      rw [Written.text, htext, List.cons_append])
    rw [heq, parseLiterals_number hhead hc, parseNumber_written n h (hstops trivial)] at hr
    exact reads_of (Nat.zero_le room) (Except.ok.inj hr).symm
  | .string s, h, _, hr => by
    obtain ⟨array, object, heq⟩ := parseValue_eq content room
    have hquote : content.drop offset = quote :: (WrittenString.inner s ++ [quote] ++ rest) := h
    rw [heq, parseLiterals_string hquote] at hr
    obtain ⟨found, hstring, hr⟩ := bind_eq_ok.mp hr
    obtain rfl := parseString_written s h hstring
    exact reads_of (Nat.zero_le room) (Except.ok.inj hr).symm
  | .emptyArray blanks, h, _, hr => by
    rw [Written.text, List.cons_append, List.append_assoc, List.singleton_append] at h
    refine parseValue_array h hr fun hitems => reads_of (Nat.zero_le _) ?_
    rw [parseItems_empty (by decide) (drop_succ_of_drop h) hitems, Written.text]
    simp
  | .array before elements, h, _, hr => by
    rw [Written.text, List.cons_append, List.append_assoc, List.append_assoc,
      List.singleton_append] at h
    obtain ⟨c, tail, htext, hc⟩ := elements.text_head
    have hinner := drop_succ_of_drop h
    refine parseValue_array h hr fun hitems => ?_
    have hread := parseItems_written (by decide) htext hc (by decide) hinner
      (fun fuel o r hskip hloop => elements_written elements hskip (drop_add_of_drop hinner) hloop)
      hitems
    exact hread.congr Iff.rfl (by rw [Written.text]; simp; omega)
  | .emptyObject blanks, h, _, hr => by
    rw [Written.text, List.cons_append, List.append_assoc, List.singleton_append] at h
    refine parseValue_object h hr fun hitems => reads_of (Nat.zero_le _) ?_
    rw [parseItems_empty (by decide) (drop_succ_of_drop h) hitems, Written.text]
    simp
  | .object before members, h, _, hr => by
    rw [Written.text, List.cons_append, List.append_assoc, List.append_assoc,
      List.singleton_append] at h
    obtain ⟨c, tail, htext, hc⟩ := members.text_head
    have hinner := drop_succ_of_drop h
    refine parseValue_object h hr fun hitems => ?_
    have hread := parseItems_written (by decide) htext hc (by decide) hinner
      (fun fuel o r hskip hloop => members_written members hskip (drop_add_of_drop hinner) hloop)
      hitems
    exact hread.congr Iff.rfl (by rw [Written.text]; simp; omega)

theorem elements_written {content rest : List UInt8} {room fuel offset start : Nat}
    {r : Parsed (List Json)} :
    ∀ e : Elements, bufferSkipWhitespace content (offset + 1) = start →
      content.drop start = e.text ++ closeBracket :: rest →
      itemsLoop content (parseElement content (parseValue content room)) fuel offset = .ok r →
      Reads (itemsDepth e.values ≤ room) e.values (start + e.text.length) r
  | .last v after, hskip, h, hr => by
    rw [Elements.text, List.append_assoc] at h
    have hitem : ∀ r, parseElement content (parseValue content room) offset = .ok r →
        Reads (depth v.value ≤ room) v.value (start + v.text.length) r := by
      intro r hv
      rw [parseElement, hskip] at hv
      exact parseValue_written v h (fun _ => stops_blanks after (by decide) rest) hv
    have hread := itemsLoop_last hitem (by decide) (by decide) (drop_add_of_drop h) hr
    refine hread.congr ?_ ?_
    · simp [Elements.values, itemsDepth]
    · rw [Elements.text, List.length_append, Nat.add_assoc]
  | .cons v after before more, hskip, h, hr => by
    rw [Elements.text, List.append_assoc, List.append_assoc, List.cons_append,
      List.append_assoc] at h
    have hitem : ∀ r, parseElement content (parseValue content room) offset = .ok r →
        Reads (depth v.value ≤ room) v.value (start + v.text.length) r := by
      intro r hv
      rw [parseElement, hskip] at hv
      exact parseValue_written v h (fun _ => stops_blanks after (by decide) _) hv
    have hafter := drop_add_of_drop h
    have hbefore := drop_succ_of_drop (drop_add_of_drop hafter)
    have hmore := drop_add_of_drop hbefore
    obtain ⟨c, tail, htext, hc⟩ := more.text_head
    rw [htext, List.cons_append] at hbefore
    have hread := itemsLoop_cons hitem hafter (fun fuel r hloop =>
      elements_written more (skip_blanks before hbefore fun hle => hc (.inl hle)) hmore hloop) hr
    refine hread.congr max_le_iff ?_
    rw [Elements.text]
    simp only [List.length_append, List.length_cons]
    omega

theorem members_written {content rest : List UInt8} {room fuel offset start : Nat}
    {r : Parsed (List (CString × Json))} :
    ∀ m : Members, bufferSkipWhitespace content (offset + 1) = start →
      content.drop start = m.text ++ closeBrace :: rest →
      itemsLoop content (parseMember content (parseValue content room)) fuel offset = .ok r →
      Reads (membersDepth m.values ≤ room) m.values (start + m.text.length) r
  | .last name v after, hskip, h, hr => by
    rw [Members.text, List.append_assoc, List.append_assoc] at h
    obtain ⟨c, tail, htext, hc⟩ := v.text_head
    have hvalue := drop_add_of_drop h
    have hitem : ∀ r, parseMember content (parseValue content room) offset = .ok r →
        Reads (depth v.value ≤ room) (WrittenString.value name.name, v.value)
          (start + name.text.length + v.text.length) r := by
      intro r hm
      rw [htext, List.cons_append] at h
      refine parseMember_written name (fun hle => hc (.inl hle)) hskip h ?_ hm
      intro r hv
      exact parseValue_written v hvalue (fun _ => stops_blanks after (by decide) rest) hv
    have hread := itemsLoop_last hitem (by decide) (by decide) (drop_add_of_drop hvalue) hr
    refine hread.congr ?_ ?_
    · simp [Members.values, membersDepth]
    · rw [Members.text]
      simp only [List.length_append]
      omega
  | .cons name v after before more, hskip, h, hr => by
    rw [Members.text, List.append_assoc, List.append_assoc, List.append_assoc, List.cons_append,
      List.append_assoc] at h
    obtain ⟨c, tail, htext, hc⟩ := v.text_head
    have hvalue := drop_add_of_drop h
    have hitem : ∀ r, parseMember content (parseValue content room) offset = .ok r →
        Reads (depth v.value ≤ room) (WrittenString.value name.name, v.value)
          (start + name.text.length + v.text.length) r := by
      intro r hm
      rw [htext, List.cons_append] at h
      refine parseMember_written name (fun hle => hc (.inl hle)) hskip h ?_ hm
      intro r hv
      exact parseValue_written v hvalue (fun _ => stops_blanks after (by decide) _) hv
    have hafter := drop_add_of_drop hvalue
    have hbefore := drop_succ_of_drop (drop_add_of_drop hafter)
    have hmore := drop_add_of_drop hbefore
    obtain ⟨d, tail', htext', hd⟩ := more.text_head
    rw [htext', List.cons_append] at hbefore
    have hread := itemsLoop_cons hitem hafter (fun fuel r hloop =>
      members_written more (skip_blanks before hbefore fun hle => hd (.inl hle)) hmore hloop) hr
    refine hread.congr max_le_iff ?_
    rw [Members.text]
    simp only [List.length_append, List.length_cons]
    omega

end

end PeerToPeer.Parsing
