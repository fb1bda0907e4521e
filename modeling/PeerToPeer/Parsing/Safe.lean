import PeerToPeer.Parsing.StringBounds
import PeerToPeer.Parsing.Values

namespace PeerToPeer.Parsing

open CLib

mutual

/-- How deep arrays and objects are nested in the item. -/
def depth : Json → Nat
  | .array items => itemsDepth items + 1
  | .object members => membersDepth members + 1
  | _ => 0

def itemsDepth : List Json → Nat
  | [] => 0
  | item :: items => max (depth item) (itemsDepth items)

def membersDepth : List (CString × Json) → Nat
  | [] => 0
  | member :: members => max (depth member.2) (membersDepth members)

end

section Numbers

theorem takeSign_length (s : List UInt8) : (takeSign s).2.length ≤ s.length := by
  unfold takeSign
  split
  · split_ifs <;> simp
  · simp

theorem span_length (p : UInt8 → Bool) (s : List UInt8) :
    (s.span p).1.length + (s.span p).2.length = s.length := by
  rw [List.span_eq_takeWhile_dropWhile, ← List.length_append, List.takeWhile_append_dropWhile]

theorem takeFraction_length (s : List UInt8) :
    (takeFraction s).1.length + (takeFraction s).2.length ≤ s.length := by
  unfold takeFraction
  split
  · rename_i c rest
    split_ifs
    · have hspan := span_length isDigit rest
      rw [List.length_cons]
      omega
    · simp
  · simp

theorem takeExponent_length (s : List UInt8) : (takeExponent s).2.length ≤ s.length := by
  unfold takeExponent
  split
  · rename_i c rest
    split_ifs
    · have hsign := takeSign_length rest
      have hspan := span_length isDigit (takeSign rest).2
      dsimp only
      split_ifs <;> simp only [List.length_cons] <;> omega
    · exact Nat.le_refl _
  · exact Nat.le_refl _

/-- A conversion takes at least one character. -/
theorem strtod_consumes {s rest : List UInt8} {number : Decimal}
    (h : strtod s = some (number, rest)) : rest.length < s.length := by
  have hsign := takeSign_length s
  have hint := span_length isDigit (takeSign s).2
  have hfraction := takeFraction_length ((takeSign s).2.span isDigit).2
  have hexponent := takeExponent_length (takeFraction ((takeSign s).2.span isDigit).2).2
  unfold strtod at h
  dsimp only at h
  split_ifs at h with hnone
  obtain ⟨-, rfl⟩ := Prod.mk.inj (Option.some.inj h)
  by_cases hempty : ((takeSign s).2.span isDigit).1 = []
  · have hdigits := List.length_pos_of_ne_nil fun hf => hnone ⟨hempty, hf⟩
    omega
  · have hdigits := List.length_pos_of_ne_nil hempty
    omega

theorem parseNumber_lands (content : List UInt8) (offset room : Nat) :
    Lands content offset (fun item => depth item ≤ room) (.ok (parseNumber content offset)) := by
  have htake : ((content.drop offset).takeWhile isNumberChar).length ≤ content.length - offset :=
    (List.takeWhile_sublist _).length_le.trans (List.length_drop ..).le
  unfold parseNumber
  dsimp only
  cases hstrtod : strtod ((content.drop offset).takeWhile isNumberChar) with
  | none => exact lands_none _
  | some found =>
    obtain ⟨number, rest⟩ := found
    have hless := strtod_consumes hstrtod
    exact lands_some (by omega) (by omega) (Nat.zero_le room)

end Numbers

section Buffer

variable {content : List UInt8}

theorem bufferSkipWhitespace_le {offset : Nat} (h : offset ≤ content.length) :
    bufferSkipWhitespace content offset ≤ content.length := by
  rcases Nat.lt_or_eq_of_le h with hlt | heq
  · exact (bufferSkipWhitespace_lt hlt).le
  · rw [bufferSkipWhitespace, if_pos heq.ge]
    exact h

theorem itemsDepth_le {items : List Json} {room : Nat} (h : ∀ x ∈ items, depth x ≤ room) :
    itemsDepth items ≤ room := by
  induction items with
  | nil => exact Nat.zero_le room
  | cons item items ih =>
    rw [List.forall_mem_cons] at h
    exact max_le h.1 (ih h.2)

theorem membersDepth_le {members : List (CString × Json)} {room : Nat}
    (h : ∀ x ∈ members, depth x.2 ≤ room) : membersDepth members ≤ room := by
  induction members with
  | nil => exact Nat.zero_le room
  | cons member members ih =>
    rw [List.forall_mem_cons] at h
    exact max_le h.1 (ih h.2)

section Items

variable {α : Type} {parseItem : Nat → ParseM (Parsed α)} {P : α → Prop}
  (hitem : ∀ o, Lands content o P (parseItem o))
include hitem

/-- Each item takes the loop further, so that it ends within the buffer. -/
theorem itemsLoop_lands {fuel offset : Nat} (h : offset < content.length)
    (hfuel : content.length ≤ offset + fuel) :
    Lands content offset (fun items => ∀ x ∈ items, P x)
      (itemsLoop content parseItem fuel offset) := by
  induction fuel generalizing offset with
  | zero => omega
  | succ fuel ih =>
    obtain ⟨item, o, hr, hfound⟩ := hitem offset
    rw [itemsLoop, hr, ok_bind]
    cases item with
    | none => exact lands_none _
    | some item =>
      obtain ⟨hlt, hle, hp⟩ := hfound item rfl
      have hskip := le_bufferSkipWhitespace content o
      dsimp only
      split_ifs with hcomma
      · have hrest := ih (lt_of_getElem? hcomma) (by omega)
        exact hrest.map (item :: ·) (by omega) fun items hitems =>
          List.forall_mem_cons.mpr ⟨hp, hitems⟩
      · exact lands_some (by omega) (bufferSkipWhitespace_le hle) (by simpa using hp)

theorem parseItems_lands {close : UInt8} {wrap : List α → Json} {room offset : Nat}
    (hwrap : ∀ items, (∀ x ∈ items, P x) → depth (wrap items) ≤ room) :
    Lands content offset (fun item => depth item ≤ room)
      (parseItems content parseItem close wrap offset) := by
  have hskip := le_bufferSkipWhitespace content (offset + 1)
  unfold parseItems
  dsimp only
  split_ifs with hclose hend
  · have hlt := lt_of_getElem? hclose
    exact lands_some (by omega) (by omega) (hwrap [] (by simp))
  · exact lands_none _
  · have hin : bufferSkipWhitespace content (offset + 1) - 1 < content.length := by omega
    obtain ⟨items, o, hr, hitems⟩ := itemsLoop_lands hitem hin (Nat.le_add_left _ _)
    rw [hr, ok_bind]
    cases items with
    | none => exact lands_none _
    | some items =>
      obtain ⟨hlt, -, hp⟩ := hitems items rfl
      dsimp only
      split_ifs with hclose'
      · have hlt' := lt_of_getElem? hclose'
        exact lands_some (by omega) (by omega) (hwrap items hp)
      · exact lands_none _

end Items

section Nested

variable {parseValue : Nat → ParseM (Parsed Json)} {room : Nat}
  (hvalue : ∀ o, Lands content o (fun item => depth item ≤ room) (parseValue o))
include hvalue

theorem parseElement_lands (offset : Nat) : Lands content offset (fun item => depth item ≤ room)
    (parseElement content parseValue offset) := by
  have hskip := le_bufferSkipWhitespace content (offset + 1)
  obtain ⟨item, o, hr, hitem⟩ := hvalue (bufferSkipWhitespace content (offset + 1))
  refine ⟨item, o, hr, ?_⟩
  intro x hx
  obtain ⟨hlt, hle, hdepth⟩ := hitem x hx
  exact ⟨by omega, hle, hdepth⟩

theorem parseArray_lands {offset : Nat} (h : offset < content.length) :
    Lands content offset (fun item => depth item ≤ room + 1)
      (parseArray content parseValue offset) := by
  unfold parseArray
  rw [readAt_lt h, ok_bind]
  split_ifs
  · exact lands_none _
  · exact parseItems_lands (parseElement_lands hvalue) fun items hitems =>
      Nat.succ_le_succ (itemsDepth_le hitems)

theorem parseMember_lands (offset : Nat) :
    Lands content offset (fun member => depth member.2 ≤ room)
      (parseMember content parseValue offset) := by
  have hskip := le_bufferSkipWhitespace content (offset + 1)
  unfold parseMember
  split_ifs with hend
  · exact lands_none _
  obtain ⟨name, o, hr, hname⟩ := parseString_lands
    (bufferSkipWhitespace_lt (show offset + 1 < content.length by omega))
  rw [hr, ok_bind]
  cases name with
  | none => exact lands_none _
  | some name =>
    obtain ⟨hlt, -, -⟩ := hname name rfl
    have hskip' := le_bufferSkipWhitespace content o
    dsimp only
    split_ifs
    · exact lands_none _
    · have hskip'' := le_bufferSkipWhitespace content (bufferSkipWhitespace content o + 1)
      have hitem := hvalue (bufferSkipWhitespace content (bufferSkipWhitespace content o + 1))
      exact hitem.map (name, ·) (by omega) fun _ hdepth => hdepth

theorem parseObject_lands (offset : Nat) :
    Lands content offset (fun item => depth item ≤ room + 1)
      (parseObject content parseValue offset) := by
  unfold parseObject
  split_ifs
  · exact lands_none _
  · exact parseItems_lands (parseMember_lands hvalue) fun members hmembers =>
      Nat.succ_le_succ (membersDepth_le hmembers)

end Nested

theorem literalAt_lands {offset room : Nat} {lit : CString}
    (h : literalAt content offset lit = true) (hlit : lit.chars ≠ []) {item : Json}
    (hitem : depth item ≤ room) : Lands content offset (fun item => depth item ≤ room)
      (.ok (some item, offset + lit.chars.length)) := by
  have hpos := List.length_pos_of_ne_nil hlit
  have hle : offset + lit.chars.length ≤ content.length := by
    simp only [literalAt, Bool.and_eq_true, decide_eq_true_eq] at h
    exact h.1
  exact lands_some (by omega) hle hitem

theorem parseLiterals_lands {array object : Nat → ParseM (Parsed Json)} {offset room : Nat}
    (harray : offset < content.length →
      Lands content offset (fun item => depth item ≤ room) (array offset))
    (hobject : Lands content offset (fun item => depth item ≤ room) (object offset)) :
    Lands content offset (fun item => depth item ≤ room)
      (parseLiterals content array object offset) := by
  unfold parseLiterals
  split_ifs with hnull hfalse htrue
  · exact literalAt_lands hnull (by decide) (Nat.zero_le room)
  · exact literalAt_lands hfalse (by decide) (Nat.zero_le room)
  · exact literalAt_lands htrue (by decide) (Nat.zero_le room)
  unfold parseOther
  cases hc : content[offset]? with
  | none => exact lands_none _
  | some c =>
    have hlt := lt_of_getElem? hc
    dsimp only
    split_ifs
    · exact (parseString_lands hlt).map Json.string (Nat.le_refl _) fun _ _ => Nat.zero_le room
    · exact parseNumber_lands content offset room
    · exact harray hlt
    · exact hobject
    · exact lands_none _

/-- Wherever it starts, `parse_value` returns, and nests no deeper than there is room. -/
theorem parseValue_lands (content : List UInt8) (room offset : Nat) :
    Lands content offset (fun item => depth item ≤ room) (parseValue content room offset) := by
  induction room generalizing offset with
  | zero => exact parseLiterals_lands (fun _ => lands_none _) (lands_none _)
  | succ room ih => exact parseLiterals_lands (parseArray_lands ih) (parseObject_lands ih offset)

theorem errorPosition_le (offset : Nat) : errorPosition content offset ≤ content.length - 1 := by
  unfold errorPosition
  split_ifs <;> omega

/-- Whatever the bytes of the buffer, `cJSON_ParseWithLengthOpts` returns: it reads nothing outside
the buffer, writes no string outside its allocation, and none of its loops goes on forever. Where
it gives up, the position it reports is that of a byte of the buffer; an item it returns nests no
deeper than `CJSON_NESTING_LIMIT`. -/
theorem parse_returns (content : List UInt8) (requireNullTerminated : Bool) :
    ∃ item position, parseWithLengthOpts content requireNullTerminated = .ok (item, position) ∧
      position ≤ content.length ∧ (item = none → position ≤ content.length - 1) ∧
      ∀ root, item = some root → depth root ≤ nestingLimit := by
  have fails {offset : Nat} (h : offset ≤ content.length - 1) : ∃ item position,
      (.ok (none, offset) : ParseM (Parsed Json)) = .ok (item, position) ∧
        position ≤ content.length ∧ (item = none → position ≤ content.length - 1) ∧
        ∀ root, item = some root → depth root ≤ nestingLimit :=
    ⟨none, _, rfl, by omega, fun _ => h, fun _ h => by cases h⟩
  obtain ⟨item, o, hr, hitem⟩ := parseValue_lands content nestingLimit
    (bufferSkipWhitespace content (skipUtf8Bom content))
  unfold parseWithLengthOpts
  by_cases hempty : content.length = 0
  · rw [if_pos hempty]
    exact fails (Nat.zero_le _)
  rw [if_neg hempty, hr, ok_bind]
  cases item with
  | none => exact fails (errorPosition_le o)
  | some root =>
    obtain ⟨-, hle, hdepth⟩ := hitem root rfl
    have hroot : ∀ root', some root = some root' → depth root' ≤ nestingLimit := by
      intro root' he
      obtain rfl := Option.some.inj he
      exact hdepth
    dsimp only
    split_ifs
    · exact fails (errorPosition_le _)
    · exact ⟨some root, _, rfl, bufferSkipWhitespace_le hle, fun h => by (cases h), hroot⟩
    · exact ⟨some root, o, rfl, hle, fun h => by (cases h), hroot⟩

end Buffer

end PeerToPeer.Parsing
