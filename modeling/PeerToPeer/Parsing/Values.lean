import PeerToPeer.Parsing.Strings
import PeerToPeer.Parsing.Numbers

namespace PeerToPeer.Parsing

open CLib

section Buffer

variable (content : List UInt8)

section Items

variable {α : Type} (parseItem : Nat → ParseM (Parsed α))

/-- The loop over items with commas between them, from the character in front of an item; it
leaves the offset at the first character that is not a comma. -/
def itemsLoop : Nat → Nat → ParseM (Parsed (List α))
  | 0, _ => .error .outOfFuel
  | fuel + 1, offset => do
    let (item, offset) ← parseItem offset
    match item with
    | none => return (none, offset)
    | some item =>
      let offset := bufferSkipWhitespace content offset
      if content[offset]? = some comma then
        let (rest, offset) ← itemsLoop fuel offset
        return (rest.map (item :: ·), offset)
      else return (some [item], offset)

/-- What `parse_array` and `parse_object` do behind the opening bracket. -/
def parseItems (close : UInt8) (wrap : List α → Json) (offset : Nat) : ParseM (Parsed Json) := do
  let offset := bufferSkipWhitespace content (offset + 1)
  if content[offset]? = some close then return (some (wrap []), offset + 1)
  if content.length ≤ offset then return (none, offset - 1)
  let (items, offset) ← itemsLoop content parseItem content.length (offset - 1)
  match items with
  | none => return (none, offset)
  | some items =>
    if content[offset]? = some close then return (some (wrap items), offset + 1)
    else return (none, offset)

end Items

section Nested

variable (parseValue : Nat → ParseM (Parsed Json))

/-- An element of an array, from the character in front of it. -/
def parseElement (offset : Nat) : ParseM (Parsed Json) :=
  parseValue (bufferSkipWhitespace content (offset + 1))

/-- `parse_array`, where it may nest. -/
def parseArray (offset : Nat) : ParseM (Parsed Json) := do
  let c ← readAt content offset
  if c ≠ openBracket then return (none, offset)
  parseItems content (parseElement content parseValue) closeBracket .array offset

/-- A member of an object, from the character in front of it. -/
def parseMember (offset : Nat) : ParseM (Parsed (CString × Json)) := do
  if content.length ≤ offset + 1 then return (none, offset)
  let (name, offset) ← parseString content (bufferSkipWhitespace content (offset + 1))
  match name with
  | none => return (none, offset)
  | some name =>
    let offset := bufferSkipWhitespace content offset
    if content[offset]? ≠ some colon then return (none, offset)
    let (item, offset) ← parseValue (bufferSkipWhitespace content (offset + 1))
    return (item.map (name, ·), offset)

/-- `parse_object`, where it may nest. -/
def parseObject (offset : Nat) : ParseM (Parsed Json) := do
  if content[offset]? ≠ some openBrace then return (none, offset)
  parseItems content (parseMember content parseValue) closeBrace .object offset

end Nested

/-- What `parse_value` does at a character that begins no literal. -/
def parseOther (array object : Nat → ParseM (Parsed Json)) (offset : Nat) :
    ParseM (Parsed Json) :=
  match content[offset]? with
  | none => .ok (none, offset)
  | some c =>
    if c = quote then do
      let (s, offset) ← parseString content offset
      return (s.map Json.string, offset)
    else if c = 0x2D ∨ isDigit c then .ok (parseNumber content offset)
    else if c = openBracket then array offset
    else if c = openBrace then object offset
    else .ok (none, offset)

/-- The literals come first. -/
def parseLiterals (array object : Nat → ParseM (Parsed Json)) (offset : Nat) :
    ParseM (Parsed Json) :=
  if literalAt content offset (.lit "null") then .ok (some .null, offset + 4)
  else if literalAt content offset (.lit "false") then .ok (some (.bool false), offset + 5)
  else if literalAt content offset (.lit "true") then .ok (some (.bool true), offset + 4)
  else parseOther content array object offset

/-- `parse_value`, with `room` levels of nesting left below `CJSON_NESTING_LIMIT`. -/
def parseValue : Nat → Nat → ParseM (Parsed Json)
  | 0 => parseLiterals content (fun offset => .ok (none, offset)) (fun offset => .ok (none, offset))
  | room + 1 => parseLiterals content (parseArray content (parseValue room))
      (parseObject content (parseValue room))

/-- `local_error.position` -/
def errorPosition (offset : Nat) : Nat :=
  if offset < content.length then offset else if 0 < content.length then content.length - 1 else 0

/-- `cJSON_ParseWithLengthOpts`: the item, and where the parse ends or fails. -/
def parseWithLengthOpts (requireNullTerminated : Bool) : ParseM (Parsed Json) := do
  if content.length = 0 then return (none, 0)
  let (item, offset) ← parseValue content nestingLimit
    (bufferSkipWhitespace content (skipUtf8Bom content))
  match item with
  | none => return (none, errorPosition content offset)
  | some item =>
    if requireNullTerminated then
      let offset := bufferSkipWhitespace content offset
      if content[offset]? ≠ some 0 then return (none, errorPosition content offset)
      return (some item, offset)
    else return (some item, offset)

end Buffer

/-- `cJSON_ParseWithOpts`: the terminator belongs to the buffer. -/
def parseWithOpts (value : CString) (requireNullTerminated : Bool) : ParseM (Parsed Json) :=
  parseWithLengthOpts value.mem requireNullTerminated

/-- `cJSON_Parse` -/
def parse (value : CString) : ParseM (Parsed Json) := parseWithOpts value false

end PeerToPeer.Parsing
