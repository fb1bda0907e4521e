import PeerToPeer.Parsing.Buffer

namespace PeerToPeer.Parsing

open CLib

/-- The value of a hexadecimal digit. -/
def hexDigit (c : UInt8) : Option Nat :=
  if 0x30 ≤ c ∧ c ≤ 0x39 then some (c.toNat - 0x30)
  else if 0x41 ≤ c ∧ c ≤ 0x46 then some (10 + c.toNat - 0x41)
  else if 0x61 ≤ c ∧ c ≤ 0x66 then some (10 + c.toNat - 0x61)
  else none

/-- The lengths and first bytes of UTF-8: how many bytes, and the mark of the first one. -/
def utf8Length (codepoint : Nat) : Option (Nat × Nat) :=
  if codepoint < 0x80 then some (1, 0)
  else if codepoint < 0x800 then some (2, 0xC0)
  else if codepoint < 0x10000 then some (3, 0xE0)
  else if codepoint ≤ 0x10FFFF then some (4, 0xF0)
  else none

/-- The loop that encodes from the last byte on, down to position 1; `tail` is behind it. -/
def encodeTail : Nat → Nat → List UInt8 → Nat × List UInt8
  | 0, codepoint, tail => (codepoint, tail)
  | position + 1, codepoint, tail =>
    encodeTail position (codepoint >>> 6)
      (UInt8.ofNat ((codepoint ||| 0x80) &&& 0xBF) :: tail)

/-- The bytes written for a code point, `none` for an invalid one. -/
def encodeUtf8 (codepoint : Nat) : Option (List UInt8) :=
  (utf8Length codepoint).map fun (length, mark) =>
    let (codepoint, tail) := encodeTail (length - 1) codepoint []
    if 1 < length then UInt8.ofNat ((codepoint ||| mark) &&& 0xFF) :: tail
    else [UInt8.ofNat (codepoint &&& 0x7F)]

/-- The first pass of `parse_string`, over what follows the opening quote: the distance to the
closing quote, and the number of backslashes skipped. -/
def scanString : List UInt8 → Option (Nat × Nat)
  | [] => none
  | c :: rest =>
    if c = quote then some (0, 0)
    else if c = backslash then
      match rest with
      | [] => none
      | _ :: rest => (scanString rest).map fun (n, skipped) => (n + 2, skipped + 1)
    else (scanString rest).map fun (n, skipped) => (n + 1, skipped)

/-- Bytes appended to the output, an allocation of `size` bytes. -/
def emitBytes (size : Nat) (out bytes : List UInt8) : ParseM (List UInt8) :=
  if out.length + bytes.length ≤ size then .ok (out ++ bytes) else .error .outOfBounds

/-- What a character behind a backslash stands for; `u` is not among them. -/
def simpleEscape (c : UInt8) : Option UInt8 :=
  if c = 0x62 then some 0x08
  else if c = 0x66 then some 0x0C
  else if c = 0x6E then some 0x0A
  else if c = 0x72 then some 0x0D
  else if c = 0x74 then some 0x09
  else if c = quote ∨ c = backslash ∨ c = 0x2F then some c
  else none

section Buffer

variable (content : List UInt8)

/-- The loop of `parse_hex4` with `k` digits to go: an invalid digit makes the whole number 0. -/
def hexLoop : Nat → Nat → Nat → ParseM Nat
  | 0, _, h => .ok h
  | k + 1, i, h => do
    let c ← readAt content i
    match hexDigit c with
    | none => return 0
    | some digit => hexLoop k (i + 1) (if 0 < k then (h + digit) <<< 4 else h + digit)

def parseHex4 (input : Nat) : ParseM Nat := hexLoop content 4 input 0

/-- The second half of a surrogate pair, spelled at `second`. -/
def secondHalf (second inputEnd : Nat) : ParseM (Option Nat) := do
  if inputEnd - second < 6 then return none
  let c ← readAt content second
  if c ≠ backslash then return none
  let u ← readAt content (second + 1)
  if u ≠ 0x75 then return none
  let secondCode ← parseHex4 content (second + 2)
  if secondCode < 0xDC00 ∨ 0xDFFF < secondCode then return none
  return some secondCode

/-- The code point of the literal at `input`, and the length of its spelling; `none` when it is
not one. -/
def utf16Codepoint (input inputEnd : Nat) : ParseM (Option (Nat × Nat)) := do
  if inputEnd - input < 6 then return none
  let firstCode ← parseHex4 content (input + 2)
  if 0xDC00 ≤ firstCode ∧ firstCode ≤ 0xDFFF then return none
  if 0xD800 ≤ firstCode ∧ firstCode ≤ 0xDBFF then
    match ← secondHalf content (input + 6) inputEnd with
    | none => return none
    | some secondCode =>
      return some (0x10000 + (((firstCode &&& 0x3FF) <<< 10) ||| (secondCode &&& 0x3FF)), 12)
  else
    return some (firstCode, 6)

/-- `utf16_literal_to_utf8`: the length of the literal, and the bytes written. -/
def utf16LiteralToUtf8 (input inputEnd : Nat) :
    ParseM (Option (Nat × List UInt8)) := do
  match ← utf16Codepoint content input inputEnd with
  | none => return none
  | some (codepoint, length) => return (encodeUtf8 codepoint).map fun bytes => (length, bytes)

/-- The second pass of `parse_string`; `p` is the input pointer. -/
def unescapeLoop (inputEnd size : Nat) : Nat → Nat → List UInt8 → ParseM (Parsed (List UInt8))
  | 0, _, _ => .error .outOfFuel
  | fuel + 1, p, out =>
    if p < inputEnd then do
      let c ← readAt content p
      if c ≠ backslash then
        let out ← emitBytes size out [c]
        unescapeLoop inputEnd size fuel (p + 1) out
      else
        let e ← readAt content (p + 1)
        if e = 0x75 then
          match ← utf16LiteralToUtf8 content p inputEnd with
          | none => return (none, p)
          | some (length, bytes) =>
            let out ← emitBytes size out bytes
            unescapeLoop inputEnd size fuel (p + length) out
        else
          match simpleEscape e with
          | none => return (none, p)
          | some b =>
            let out ← emitBytes size out [b]
            unescapeLoop inputEnd size fuel (p + 2) out
    else .ok (some out, p)

/-- `parse_string`: `valuestring` is what was written, up to the first NUL. -/
def parseString (offset : Nat) : ParseM (Parsed CString) := do
  let start := offset + 1
  let c ← readAt content offset
  if c ≠ quote then return (none, start)
  match scanString (content.drop start) with
  | none => return (none, start)
  | some (length, skipped) =>
    let inputEnd := start + length
    let allocationLength := inputEnd - offset - skipped
    let size := allocationLength + 1
    match ← unescapeLoop content inputEnd size (content.length + 1) start [] with
    | (none, p) => return (none, p)
    | (some out, _) =>
      let output ← emitBytes size out [0]
      return (some ⟨chars output, zero_notMem_chars output⟩, inputEnd + 1)

end Buffer

end PeerToPeer.Parsing
