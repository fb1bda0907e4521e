import PeerToPeer.Descriptor.Reading
import PeerToPeer.Parsing.Complete

namespace PeerToPeer.Parsing

open CLib

section NoNul

theorem isNumberChar_ne_zero {c : UInt8} (h : isNumberChar c = true) : c ≠ 0 := by
  rintro rfl
  exact absurd h (by decide)

/-- The test for a given text. -/
theorem noNul_of_all {text : List UInt8} (h : text.all (· ≠ 0) = true) : ∀ c ∈ text, c ≠ 0 := by
  simpa using h

theorem Blanks.noNul (b : Blanks) : ∀ c ∈ b.chars, c ≠ 0 := by
  intro c hc
  rcases b.blank c hc with rfl | rfl | rfl | rfl <;> decide

theorem CodeUnit.noNul (u : CodeUnit) : ∀ c ∈ u.text, c ≠ 0 := by
  have hchar (d : HexDigit) : d.char ≠ 0 := by
    have htable : ∀ v : Fin 16, ∀ b, HexDigit.char ⟨v, b⟩ ≠ 0 := by decide
    exact htable d.value d.upper
  simp only [CodeUnit.text, List.forall_mem_cons]
  exact ⟨by decide, by decide, hchar _, hchar _, hchar _, hchar _, by simp⟩

theorem Piece.noNul (p : Piece) : ∀ c ∈ p.text, c ≠ 0 := by
  cases p with
  | plain c h =>
    simp only [Piece.text, List.forall_mem_singleton]
    rintro rfl
    exact absurd h (by decide)
  | escape e => cases e <;> exact noNul_of_all (by decide)
  | unit u h => exact u.noNul
  | pair high low hh hl =>
    rw [Piece.text, List.forall_mem_append]
    exact ⟨high.noNul, low.noNul⟩

theorem WrittenString.noNul (s : WrittenString) : ∀ c ∈ WrittenString.text s, c ≠ 0 := by
  have hinner : ∀ c ∈ WrittenString.inner s, c ≠ 0 := by
    intro c hc
    obtain ⟨p, -, hp⟩ := List.mem_flatMap.mp hc
    exact p.noNul c hp
  rw [WrittenString.text, List.forall_mem_cons, List.forall_mem_append]
  exact ⟨by decide, hinner, noNul_of_all (by decide)⟩

theorem Name.noNul (n : Name) : ∀ c ∈ n.text, c ≠ 0 := by
  rw [Name.text, List.forall_mem_append, List.forall_mem_append, List.forall_mem_cons]
  exact ⟨WrittenString.noNul n.name, n.after.noNul, by decide, n.before.noNul⟩

mutual

theorem Written.noNul : ∀ w : Written, ∀ c ∈ w.text, c ≠ 0
  | .null => noNul_of_all (by decide)
  | .bool true => noNul_of_all (by decide)
  | .bool false => noNul_of_all (by decide)
  | .number n => fun c hc => isNumberChar_ne_zero (n.text_chars c hc)
  | .string s => WrittenString.noNul s
  | .emptyArray blanks => by
    rw [Written.text, List.forall_mem_cons, List.forall_mem_append]
    exact ⟨by decide, blanks.noNul, noNul_of_all (by decide)⟩
  | .array before elements => by
    rw [Written.text, List.forall_mem_cons, List.forall_mem_append, List.forall_mem_append]
    exact ⟨by decide, before.noNul, elements.noNul, noNul_of_all (by decide)⟩
  | .emptyObject blanks => by
    rw [Written.text, List.forall_mem_cons, List.forall_mem_append]
    exact ⟨by decide, blanks.noNul, noNul_of_all (by decide)⟩
  | .object before members => by
    rw [Written.text, List.forall_mem_cons, List.forall_mem_append, List.forall_mem_append]
    exact ⟨by decide, before.noNul, members.noNul, noNul_of_all (by decide)⟩

theorem Elements.noNul : ∀ e : Elements, ∀ c ∈ e.text, c ≠ 0
  | .last v after => by
    rw [Elements.text, List.forall_mem_append]
    exact ⟨v.noNul, after.noNul⟩
  | .cons v after before rest => by
    rw [Elements.text, List.forall_mem_append, List.forall_mem_append, List.forall_mem_cons,
      List.forall_mem_append]
    exact ⟨v.noNul, after.noNul, by decide, before.noNul, rest.noNul⟩

theorem Members.noNul : ∀ m : Members, ∀ c ∈ m.text, c ≠ 0
  | .last name v after => by
    rw [Members.text, List.forall_mem_append, List.forall_mem_append]
    exact ⟨name.noNul, v.noNul, after.noNul⟩
  | .cons name v after before rest => by
    rw [Members.text, List.forall_mem_append, List.forall_mem_append, List.forall_mem_append,
      List.forall_mem_cons, List.forall_mem_append]
    exact ⟨name.noNul, v.noNul, after.noNul, by decide, before.noNul, rest.noNul⟩

end

theorem Document.noNul (d : Document) : 0 ∉ d.text := by
  have hall : ∀ c ∈ d.text, c ≠ 0 := by
    rw [Document.text, List.forall_mem_append, List.forall_mem_append, List.forall_mem_append]
    refine ⟨?_, d.before.noNul, d.root.noNul, d.after.noNul⟩
    cases d.bom <;> exact noNul_of_all (by decide)
  exact fun h => hall 0 h rfl

end NoNul

section Depth

mutual

/-- Every level of nesting costs a bracket. -/
theorem Written.depth_le : ∀ w : Written, depth w.value ≤ w.text.length
  | .null => Nat.zero_le _
  | .bool _ => Nat.zero_le _
  | .number _ => Nat.zero_le _
  | .string _ => Nat.zero_le _
  | .emptyArray blanks => by
    rw [Written.value, Written.text, List.length_cons]
    exact Nat.succ_le_succ (Nat.zero_le _)
  | .array before elements => by
    have hdepth := elements.depth_le
    rw [Written.value, Written.text, depth]
    simp only [List.length_cons, List.length_append]
    omega
  | .emptyObject blanks => by
    rw [Written.value, Written.text, List.length_cons]
    exact Nat.succ_le_succ (Nat.zero_le _)
  | .object before members => by
    have hdepth := members.depth_le
    rw [Written.value, Written.text, depth]
    simp only [List.length_cons, List.length_append]
    omega

theorem Elements.depth_le : ∀ e : Elements, itemsDepth e.values ≤ e.text.length
  | .last v after => by
    have hdepth := v.depth_le
    rw [Elements.values, Elements.text, itemsDepth, itemsDepth, List.length_append]
    omega
  | .cons v after before rest => by
    have hdepth := v.depth_le
    have hrest := rest.depth_le
    rw [Elements.values, Elements.text, itemsDepth]
    simp only [List.length_append, List.length_cons]
    omega

theorem Members.depth_le : ∀ m : Members, membersDepth m.values ≤ m.text.length
  | .last name v after => by
    have hdepth := v.depth_le
    rw [Members.values, Members.text, membersDepth, membersDepth]
    simp only [List.length_append]
    omega
  | .cons name v after before rest => by
    have hdepth := v.depth_le
    have hrest := rest.depth_le
    rw [Members.values, Members.text, membersDepth]
    simp only [List.length_append, List.length_cons]
    omega

end

theorem Document.root_length_le (d : Document) : d.root.text.length ≤ d.text.length := by
  simp only [Document.text, List.length_append]
  omega

end Depth

/-- The document as a C string. -/
def Document.cstring (d : Document) : CString := ⟨d.text, d.noNul⟩

namespace Document

variable (d : Document)

/-- The bytes of the mark. -/
def markText : List UInt8 := if d.bom then [0xEF, 0xBB, 0xBF] else []

variable {d}

/-- The mark is skipped, and nothing is taken for one that is none. -/
theorem skipUtf8Bom_text (rest : List UInt8) (h : rest ≠ []) :
    skipUtf8Bom (d.text ++ rest) = d.markText.length := by
  obtain ⟨c, tail, hroot, hc⟩ := d.root.text_head
  have hpos := List.length_pos_of_ne_nil h
  unfold skipUtf8Bom markText text
  cases d.bom with
  | true =>
    refine if_pos ⟨?_, rfl⟩
    simp only [hroot, List.length_append, List.length_cons, if_true]
    omega
  | false =>
    refine if_neg ?_
    intro hmark
    have hhead := congrArg List.head? hmark.2
    rw [List.head?_take, if_neg (by decide)] at hhead
    cases hbefore : d.before.chars with
    | nil =>
      obtain rfl : c = 0xEF := by simpa [hbefore, hroot] using hhead
      exact hc (by decide)
    | cons b bs =>
      obtain rfl : b = 0xEF := by simpa [hbefore] using hhead
      exact absurd (d.before.blank 0xEF (by simp [hbefore])) (by decide)

/-- Where the root begins. -/
theorem skip_to_root (rest : List UInt8) (h : rest ≠ []) :
    bufferSkipWhitespace (d.text ++ rest) (skipUtf8Bom (d.text ++ rest)) =
        d.markText.length + d.before.chars.length ∧
      (d.text ++ rest).drop (d.markText.length + d.before.chars.length) =
        d.root.text ++ (d.after.chars ++ rest) := by
  obtain ⟨c, tail, hroot, hc⟩ := d.root.text_head
  have hmark : (d.text ++ rest).drop d.markText.length =
      d.before.chars ++ (d.root.text ++ (d.after.chars ++ rest)) := by
    rw [text, ← List.append_assoc, markText]
    simp
  refine ⟨?_, drop_add_of_drop hmark⟩
  rw [hroot, List.cons_append] at hmark
  rw [skipUtf8Bom_text rest h, skip_blanks d.before hmark fun hle => hc (.inl hle)]

/-- The root is read up to its end, whatever follows, if it nests no deeper than the parser
allows. -/
theorem root_read (rest : List UInt8) (h : rest ≠ [])
    (hstops : d.root.IsNumber → Stops (d.after.chars ++ rest)) : ∃ r,
      parseValue (d.text ++ rest) nestingLimit
        (bufferSkipWhitespace (d.text ++ rest) (skipUtf8Bom (d.text ++ rest))) = .ok r ∧
      Reads (depth d.root.value ≤ nestingLimit) d.root.value
        (d.markText.length + d.before.chars.length + d.root.text.length) r := by
  obtain ⟨hskip, hroot⟩ := skip_to_root (d := d) rest h
  obtain ⟨item, o, hr, -⟩ := parseValue_lands (d.text ++ rest) nestingLimit
    (d.markText.length + d.before.chars.length)
  rw [hskip]
  exact ⟨_, hr, parseValue_written d.root hroot hstops hr⟩

/-- The terminator is skipped like a blank, and stepped back to. -/
theorem skip_terminator {text : List UInt8} {blanks : Blanks} {o : Nat}
    (h : (text ++ [0]).drop o = blanks.chars ++ [0]) :
    bufferSkipWhitespace (text ++ [0]) o = text.length := by
  have hlen := congrArg List.length h
  simp only [List.length_drop, List.length_append, List.length_singleton] at hlen
  have hall : ((text ++ [0]).drop o).takeWhile (· ≤ 32) = blanks.chars ++ [0] := by
    rw [h, List.takeWhile_eq_self_iff]
    intro c hc
    rcases List.mem_append.mp hc with hc | hc
    · simpa using blanks.skipped c hc
    · obtain rfl := List.mem_singleton.mp hc
      decide
  unfold bufferSkipWhitespace
  simp only [hall, List.length_append, List.length_singleton]
  rw [if_neg (by omega), if_pos (by omega)]
  omega

end Document

/-- Every JSON text that nests no deeper than `CJSON_NESTING_LIMIT` is parsed to what it says, and
one that nests deeper is given up, whether or not the caller asks for the terminator. -/
theorem parse_written (d : Document) (requireNullTerminated : Bool) :
    ∃ position, parseWithOpts d.cstring requireNullTerminated =
      .ok (if depth d.root.value ≤ nestingLimit then some d.root.value else none, position) := by
  have hstops : Stops (d.after.chars ++ [0]) := stops_blanks d.after (by decide) []
  obtain ⟨⟨item, o⟩, hr, hfits, hdeep⟩ := Document.root_read (d := d) [0] (by simp) fun _ => hstops
  have hmem : d.cstring.mem = d.text ++ [0] := rfl
  rw [parseWithOpts, hmem, parseWithLengthOpts, if_neg (by simp), hr, ok_bind]
  by_cases hroom : depth d.root.value ≤ nestingLimit
  · obtain ⟨rfl, rfl⟩ := Prod.mk.inj (hfits hroom)
    rw [if_pos hroom]
    cases requireNullTerminated with
    | false => exact ⟨_, rfl⟩
    | true =>
      obtain ⟨-, hroot⟩ := Document.skip_to_root (d := d) [0] (by simp)
      have hend := Document.skip_terminator (drop_add_of_drop hroot)
      dsimp only
      rw [if_pos rfl, hend, if_neg (by simp)]
      exact ⟨_, rfl⟩
  · obtain rfl : item = none := hdeep hroom
    rw [if_neg hroom]
    exact ⟨_, rfl⟩

/-- What `cJSON_Parse` makes of the characters of a string. -/
def parsed (s : List UInt8) : Option Json :=
  match parseWithLengthOpts (s ++ [0]) false with
  | .ok (item, _) => item
  | .error _ => none

theorem parse_item (value : CString) :
    ∃ position, parse value = .ok (parsed value.chars, position) := by
  obtain ⟨item, position, hr, -⟩ := parse_returns (value.chars ++ [0]) false
  refine ⟨position, ?_⟩
  rw [parse, parseWithOpts, CString.mem, parsed, hr]

/-- An array, an object, a string or a literal is read at the start of any string. -/
theorem jsonText_written {d : Document} (hroot : ¬ d.root.IsNumber)
    (hdepth : depth d.root.value ≤ nestingLimit) : JsonText parsed d.text d.root.value := by
  refine ⟨d.noNul, ?_⟩
  intro rest _
  obtain ⟨r, hr, hfits, -⟩ := Document.root_read (d := d) (rest ++ [0]) (by simp)
    fun h => absurd h hroot
  obtain rfl := hfits hdepth
  rw [parsed, List.append_assoc, parseWithLengthOpts, if_neg (by simp), hr, ok_bind]
  rfl

end PeerToPeer.Parsing
