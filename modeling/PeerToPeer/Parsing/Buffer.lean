import PeerToPeer.Descriptor.Json

namespace PeerToPeer.Parsing

open CLib

/-- How a parse can go wrong without returning: a read or write outside an object, or a loop of
the model that is cut off. -/
inductive ParseFault where
  | outOfBounds
  | outOfFuel
  deriving DecidableEq, Repr

abbrev ParseM : Type → Type := Except ParseFault

/-- What a parse function returns: the item, if it succeeds, and the offset it leaves behind. -/
abbrev Parsed (α : Type) : Type := Option α × Nat

def quote : UInt8 := 0x22
def backslash : UInt8 := 0x5C
def comma : UInt8 := 0x2C
def colon : UInt8 := 0x3A
def openBracket : UInt8 := 0x5B
def closeBracket : UInt8 := 0x5D
def openBrace : UInt8 := 0x7B
def closeBrace : UInt8 := 0x7D

/-- `CJSON_NESTING_LIMIT` -/
def nestingLimit : Nat := 1000

section Buffer

variable (content : List UInt8)

/-- A read at index `i` of the buffer, not guarded by a test. -/
def readAt (i : Nat) : ParseM UInt8 :=
  match content[i]? with
  | some c => .ok c
  | none => .error .outOfBounds

/-- `can_read` and `strncmp` for a literal without NUL. -/
def literalAt (offset : Nat) (lit : CString) : Bool :=
  offset + lit.chars.length ≤ content.length &&
    (content.drop offset).take lit.chars.length = lit.chars

/-- `buffer_skip_whitespace`: behind the last byte it steps back, but only after a byte that it
skipped. -/
def bufferSkipWhitespace (offset : Nat) : Nat :=
  if content.length ≤ offset then offset
  else
    let skipped := offset + ((content.drop offset).takeWhile (· ≤ 32)).length
    if skipped = content.length then skipped - 1 else skipped

/-- `skip_utf8_bom`, from the start of the buffer. -/
def skipUtf8Bom : Nat :=
  if 4 < content.length ∧ content.take 3 = [0xEF, 0xBB, 0xBF] then 3 else 0

end Buffer

section Lemmas

variable {content : List UInt8}

theorem readAt_lt {i : Nat} (h : i < content.length) : readAt content i = .ok content[i] := by
  rw [readAt, List.getElem?_eq_getElem h]

theorem readAt_ok {i : Nat} {c : UInt8} (h : content[i]? = some c) : readAt content i = .ok c := by
  rw [readAt, h]

theorem readAt_eq_ok {i : Nat} {c : UInt8} (h : readAt content i = .ok c) :
    content[i]? = some c := by
  unfold readAt at h
  split at h
  · rename_i d hd
    cases h
    exact hd
  · cases h

/-- What is left of the buffer begins with the byte at the offset. -/
theorem getElem?_of_drop {offset : Nat} {c : UInt8} {rest : List UInt8}
    (h : content.drop offset = c :: rest) : content[offset]? = some c := by
  rw [← List.head?_drop, h]
  rfl

/-- A byte that the guarded tests can see is in the buffer. -/
theorem lt_of_getElem? {offset : Nat} {c : UInt8} (h : content[offset]? = some c) :
    offset < content.length := (List.getElem?_eq_some_iff.mp h).1

theorem drop_of_getElem? {offset : Nat} {c : UInt8} (h : content[offset]? = some c) :
    content.drop offset = c :: content.drop (offset + 1) := by
  obtain ⟨hlt, rfl⟩ := List.getElem?_eq_some_iff.mp h
  exact List.drop_eq_getElem_cons hlt

theorem drop_add_of_drop {offset : Nat} {text rest : List UInt8}
    (h : content.drop offset = text ++ rest) : content.drop (offset + text.length) = rest := by
  rw [← List.drop_drop, h, List.drop_left]

theorem drop_succ_of_drop {offset : Nat} {c : UInt8} {rest : List UInt8}
    (h : content.drop offset = c :: rest) : content.drop (offset + 1) = rest := by
  rw [← List.singleton_append] at h
  exact drop_add_of_drop h

theorem lt_of_drop {offset : Nat} {c : UInt8} {rest : List UInt8}
    (h : content.drop offset = c :: rest) : offset < content.length := by
  have hlen := congrArg List.length h
  rw [List.length_drop, List.length_cons] at hlen
  omega

theorem le_bufferSkipWhitespace (content : List UInt8) (offset : Nat) :
    offset ≤ bufferSkipWhitespace content offset := by
  unfold bufferSkipWhitespace
  dsimp only
  split_ifs <;> omega

theorem bufferSkipWhitespace_lt {offset : Nat} (h : offset < content.length) :
    bufferSkipWhitespace content offset < content.length := by
  have hskip : ((content.drop offset).takeWhile (· ≤ 32)).length ≤ content.length - offset :=
    (List.takeWhile_sublist _).length_le.trans (List.length_drop ..).le
  unfold bufferSkipWhitespace
  dsimp only
  split_ifs <;> omega

/-- Blanks are skipped up to the byte that ends them. -/
theorem bufferSkipWhitespace_stops {offset : Nat} {blanks rest : List UInt8} {c : UInt8}
    (hb : ∀ b ∈ blanks, b ≤ 32) (hc : ¬ c ≤ 32) (h : content.drop offset = blanks ++ c :: rest) :
    bufferSkipWhitespace content offset = offset + blanks.length := by
  have hlen := congrArg List.length h
  rw [List.length_drop, List.length_append, List.length_cons] at hlen
  have hskip : (content.drop offset).takeWhile (· ≤ 32) = blanks := by
    rw [h, List.takeWhile_append_of_pos (by simpa using hb),
      List.takeWhile_cons_of_neg (by simpa using hc), List.append_nil]
  unfold bufferSkipWhitespace
  dsimp only
  rw [hskip, if_neg (by omega), if_neg (by omega)]

end Lemmas

end PeerToPeer.Parsing
