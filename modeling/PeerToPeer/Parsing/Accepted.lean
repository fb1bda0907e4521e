import PeerToPeer.Parsing.Complete
import PeerToPeer.Parsing.LooseNumber
import PeerToPeer.Parsing.LooseString

namespace PeerToPeer.Parsing

open CLib

/-- What stands in front of `rest` is skipped as white space. -/
def BlankTo (s rest : List UInt8) : Prop := ∃ blanks, (∀ b ∈ blanks, b ≤ 32) ∧ s = blanks ++ rest

/-- A string in quotes in front of `rest`, and its value: what the inside stands for, up to the
first NUL. -/
def StringTo (value : CString) (s rest : List UInt8) : Prop :=
  ∃ inner bytes, s = quote :: (inner ++ quote :: rest) ∧ Quoted inner ∧ Unescaped inner bytes ∧
    value.chars = chars bytes

def NumberTo (valueint : Int32) (s rest : List UInt8) : Prop :=
  ∃ n : LooseNumber, s = n.text ++ rest ∧ valueint = n.decimal.valueint

section Items

variable {α : Type} (P : α → List UInt8 → List UInt8 → Prop)

/-- Items with commas between them, and blanks around each. -/
inductive ItemsTo : List α → List UInt8 → List UInt8 → Prop where
  | last {x : α} {s s₁ s₂ rest : List UInt8} (before : BlankTo s s₁) (h : P x s₁ s₂)
      (after : BlankTo s₂ rest) : ItemsTo [x] s rest
  | cons {x : α} {xs : List α} {s s₁ s₂ s₃ rest : List UInt8} (before : BlankTo s s₁)
      (h : P x s₁ s₂) (after : BlankTo s₂ (comma :: s₃)) (more : ItemsTo xs s₃ rest) :
      ItemsTo (x :: xs) s rest

/-- Items in brackets, or brackets with nothing in them. -/
inductive BracketsTo (opening closing : UInt8) : List α → List UInt8 → List UInt8 → Prop where
  | empty {s rest : List UInt8} (h : BlankTo s (closing :: rest)) :
      BracketsTo opening closing [] (opening :: s) rest
  | items {xs : List α} {s rest : List UInt8} (h : ItemsTo P xs s (closing :: rest)) :
      BracketsTo opening closing xs (opening :: s) rest

end Items

/-- A name, a colon and a value. -/
def MemberTo (P : Json → List UInt8 → List UInt8 → Prop) (member : CString × Json)
    (s rest : List UInt8) : Prop :=
  ∃ s₁ s₂ s₃, StringTo member.1 s s₁ ∧ BlankTo s₁ (colon :: s₂) ∧ BlankTo s₂ s₃ ∧
    P member.2 s₃ rest

/-- What `s` has in front of `rest` spells the item, with `room` levels of nesting at most. -/
def Spelled : Nat → Json → List UInt8 → List UInt8 → Prop
  | _, .null, s, rest => s = (CString.lit "null").chars ++ rest
  | _, .bool b, s, rest => s = (if b then CString.lit "true" else CString.lit "false").chars ++ rest
  | _, .number v, s, rest => NumberTo v s rest
  | _, .string v, s, rest => StringTo v s rest
  | room + 1, .array items, s, rest =>
    BracketsTo (Spelled room) openBracket closeBracket items s rest
  | room + 1, .object members, s, rest =>
    BracketsTo (MemberTo (Spelled room)) openBrace closeBrace members s rest
  | 0, .array _, _, _ => False
  | 0, .object _, _, _ => False

theorem BlankTo.trans {s s₁ rest : List UInt8} (h : BlankTo s s₁) (h' : BlankTo s₁ rest) :
    BlankTo s rest := by
  obtain ⟨blanks, hb, rfl⟩ := h
  obtain ⟨blanks', hb', rfl⟩ := h'
  exact ⟨blanks ++ blanks', List.forall_mem_append.mpr ⟨hb, hb'⟩, by rw [List.append_assoc]⟩

theorem ItemsTo.behind {α : Type} {P : α → List UInt8 → List UInt8 → Prop} {xs : List α}
    {s s₁ rest : List UInt8} (hb : BlankTo s s₁) (h : ItemsTo P xs s₁ rest) :
    ItemsTo P xs s rest := by
  cases h with
  | last before h after => exact .last (hb.trans before) h after
  | cons before h after more => exact .cons (hb.trans before) h after more

section Buffer

variable {content : List UInt8}

/-- All that is skipped is white space, also where the skip steps back. -/
theorem blankTo_skip (content : List UInt8) (offset : Nat) :
    BlankTo (content.drop offset) (content.drop (bufferSkipWhitespace content offset)) := by
  have hprefix (k : Nat) (hk : k ≤ ((content.drop offset).takeWhile (· ≤ 32)).length) :
      BlankTo (content.drop offset) (content.drop (offset + k)) := by
    refine ⟨(content.drop offset).take k, ?_, ?_⟩
    · intro b hb
      have hsub := List.prefix_of_prefix_length_le (List.take_prefix k (content.drop offset))
        (List.takeWhile_prefix (· ≤ 32)) ((List.length_take_le _ _).trans hk)
      simpa using List.mem_takeWhile_imp (hsub.subset hb)
    · rw [← List.drop_drop, List.take_append_drop]
  unfold bufferSkipWhitespace
  dsimp only
  split_ifs with hend hback
  · exact hprefix 0 (Nat.zero_le _)
  · rw [Nat.add_sub_assoc (by omega)]
    exact hprefix _ (Nat.sub_le _ _)
  · exact hprefix _ (Nat.le_refl _)

theorem literalAt_text {offset : Nat} {lit : CString} (h : literalAt content offset lit = true) :
    content.drop offset = lit.chars ++ content.drop (offset + lit.chars.length) := by
  rw [literalAt, Bool.and_eq_true, decide_eq_true_eq, decide_eq_true_eq] at h
  rw [← List.drop_drop]
  nth_rewrite 1 [← h.2]
  rw [List.take_append_drop]

theorem parseString_to {offset o : Nat} {v : CString}
    (h : parseString content offset = .ok (some v, o)) :
    StringTo v (content.drop offset) (content.drop o) := by
  unfold parseString at h
  dsimp only at h
  obtain ⟨c, hc, h⟩ := bind_eq_ok.mp h
  split_ifs at h with hquote
  · cases h
  obtain rfl : c = quote := not_not.mp hquote
  cases hscan : scanString (content.drop (offset + 1)) with
  | none =>
    rw [hscan] at h
    cases h
  | some found =>
    obtain ⟨length, skipped⟩ := found
    rw [hscan] at h
    dsimp only at h
    obtain ⟨⟨out, q⟩, hloop, h⟩ := bind_eq_ok.mp h
    cases out with
    | none => cases h
    | some out =>
      obtain ⟨output, hterm, h⟩ := bind_eq_ok.mp h
      obtain rfl := emitBytes_ok hterm
      obtain ⟨hv, rfl⟩ := Prod.mk.inj (Except.ok.inj h)
      obtain rfl := Option.some.inj hv
      have hclose := (scanString_some hscan).1
      rw [List.getElem?_drop] at hclose
      have htext := List.take_append_drop length (content.drop (offset + 1))
      rw [List.drop_drop, drop_of_getElem? hclose] at htext
      obtain ⟨bytes, rfl, hbytes⟩ := unescapeLoop_unescaped hclose (Nat.le_add_right _ _) hloop
      rw [window, show offset + 1 + length - (offset + 1) = length by omega] at hbytes
      refine ⟨_, _, ?_, scanString_quoted hscan, hbytes, chars_append_terminator _⟩
      rw [drop_of_getElem? (readAt_eq_ok hc), htext]

theorem parseNumber_to {offset o : Nat} {c : UInt8} {x : Json} (hc : content[offset]? = some c)
    (hstart : c = 0x2D ∨ isDigit c = true) (h : parseNumber content offset = (some x, o)) :
    ∃ v, x = .number v ∧ NumberTo v (content.drop offset) (content.drop o) := by
  have hplus : ∀ d ∈ ((content.drop offset).takeWhile isNumberChar).head?, d ≠ 0x2B := by
    intro d hd
    rw [drop_of_getElem? hc, List.head?_takeWhile, List.head?_cons] at hd
    obtain rfl : c = d := Option.mem_some.mp (Option.mem_filter_iff.mp hd).1
    rintro rfl
    exact absurd hstart (by decide)
  unfold parseNumber at h
  dsimp only at h
  cases hstrtod : strtod ((content.drop offset).takeWhile isNumberChar) with
  | none =>
    rw [hstrtod] at h
    cases h
  | some found =>
    obtain ⟨d, behind⟩ := found
    rw [hstrtod] at h
    obtain ⟨hx, rfl⟩ := Prod.mk.inj h
    obtain ⟨n, hn, rfl⟩ := strtod_spelled hplus hstrtod
    refine ⟨_, (Option.some.inj hx).symm, n, ?_, rfl⟩
    have htext : content.drop offset =
        n.text ++ (behind ++ (content.drop offset).dropWhile isNumberChar) := by
      rw [← List.append_assoc, ← hn, List.takeWhile_append_dropWhile]
    have hlen : ((content.drop offset).takeWhile isNumberChar).length - behind.length =
        n.text.length := by
      rw [hn, List.length_append]
      omega
    rw [hlen, drop_add_of_drop htext]
    exact htext

section Items

variable {α : Type} {parseItem : Nat → ParseM (Parsed α)} {P : α → List UInt8 → List UInt8 → Prop}

/-- The loop leaves the offset where its items end. -/
theorem itemsLoop_to
    (hitem : ∀ {o o' x}, parseItem o = .ok (some x, o') →
      ∃ s, BlankTo (content.drop (o + 1)) s ∧ P x s (content.drop o'))
    {fuel offset o : Nat} {xs : List α}
    (h : itemsLoop content parseItem fuel offset = .ok (some xs, o)) :
    ItemsTo P xs (content.drop (offset + 1)) (content.drop o) := by
  induction fuel generalizing offset xs with
  | zero => cases h
  | succ fuel ih =>
    rw [itemsLoop] at h
    obtain ⟨⟨item, o'⟩, hr, h⟩ := bind_eq_ok.mp h
    cases item with
    | none => cases h
    | some x =>
      obtain ⟨s, hbefore, hx⟩ := hitem hr
      have hafter := blankTo_skip content o'
      dsimp only at h
      split_ifs at h with hcomma
      · obtain ⟨⟨rest, o''⟩, hrest, h⟩ := bind_eq_ok.mp h
        obtain ⟨hxs, rfl⟩ := Prod.mk.inj (Except.ok.inj h)
        obtain ⟨xs', rfl, rfl⟩ := Option.map_eq_some_iff.mp hxs
        rw [drop_of_getElem? hcomma] at hafter
        exact .cons hbefore hx hafter (ih hrest)
      · obtain ⟨hxs, rfl⟩ := Prod.mk.inj (Except.ok.inj h)
        obtain rfl := Option.some.inj hxs
        exact .last hbefore hx hafter

theorem parseItems_to {opening close : UInt8} {wrap : List α → Json}
    (hitem : ∀ {o o' x}, parseItem o = .ok (some x, o') →
      ∃ s, BlankTo (content.drop (o + 1)) s ∧ P x s (content.drop o'))
    {offset o : Nat} {x : Json} (hopening : content[offset]? = some opening)
    (h : parseItems content parseItem close wrap offset = .ok (some x, o)) :
    ∃ xs, x = wrap xs ∧ BracketsTo P opening close xs (content.drop offset) (content.drop o) := by
  have hskip := blankTo_skip content (offset + 1)
  rw [drop_of_getElem? hopening]
  unfold parseItems at h
  dsimp only at h
  split_ifs at h with hclose hend
  · obtain ⟨hx, rfl⟩ := Prod.mk.inj (Except.ok.inj h)
    rw [drop_of_getElem? hclose] at hskip
    exact ⟨[], (Option.some.inj hx).symm, .empty hskip⟩
  · cases h
  · obtain ⟨⟨items, o'⟩, hr, h⟩ := bind_eq_ok.mp h
    cases items with
    | none => cases h
    | some xs =>
      dsimp only at h
      split_ifs at h with hclose'
      · obtain ⟨hx, rfl⟩ := Prod.mk.inj (Except.ok.inj h)
        have hitems := itemsLoop_to hitem hr
        have hstart : bufferSkipWhitespace content (offset + 1) - 1 + 1 =
            bufferSkipWhitespace content (offset + 1) := by
          have hle := le_bufferSkipWhitespace content (offset + 1)
          omega
        rw [hstart, drop_of_getElem? hclose'] at hitems
        exact ⟨xs, (Option.some.inj hx).symm, .items (hitems.behind hskip)⟩
      · cases h

end Items

section Nested

variable {pv : Nat → ParseM (Parsed Json)} {P : Json → List UInt8 → List UInt8 → Prop}

theorem parseMember_to
    (hpv : ∀ {o o' x}, pv o = .ok (some x, o') → P x (content.drop o) (content.drop o'))
    {offset o : Nat} {x : CString × Json} (h : parseMember content pv offset = .ok (some x, o)) :
    ∃ s, BlankTo (content.drop (offset + 1)) s ∧ MemberTo P x s (content.drop o) := by
  refine ⟨_, blankTo_skip content (offset + 1), ?_⟩
  unfold parseMember at h
  split_ifs at h with hend
  · cases h
  · obtain ⟨⟨name, o₁⟩, hname, h⟩ := bind_eq_ok.mp h
    cases name with
    | none => cases h
    | some name =>
      dsimp only at h
      split_ifs at h with hcolon
      · cases h
      · obtain ⟨⟨item, o₂⟩, hitem, h⟩ := bind_eq_ok.mp h
        obtain ⟨hx, rfl⟩ := Prod.mk.inj (Except.ok.inj h)
        obtain ⟨item, rfl, rfl⟩ := Option.map_eq_some_iff.mp hx
        have hafter := blankTo_skip content o₁
        rw [drop_of_getElem? (not_not.mp hcolon)] at hafter
        exact ⟨_, _, _, parseString_to hname, hafter, blankTo_skip content _, hpv hitem⟩

end Nested

theorem parseLiterals_to {array object : Nat → ParseM (Parsed Json)} {room offset o : Nat}
    {x : Json}
    (harray : content[offset]? = some openBracket → array offset = .ok (some x, o) →
      Spelled room x (content.drop offset) (content.drop o))
    (hobject : content[offset]? = some openBrace → object offset = .ok (some x, o) →
      Spelled room x (content.drop offset) (content.drop o))
    (h : parseLiterals content array object offset = .ok (some x, o)) :
    Spelled room x (content.drop offset) (content.drop o) := by
  unfold parseLiterals at h
  split_ifs at h with hnull hfalse htrue
  · obtain ⟨hx, rfl⟩ := Prod.mk.inj (Except.ok.inj h)
    obtain rfl := Option.some.inj hx
    rw [Spelled]
    exact literalAt_text hnull
  · obtain ⟨hx, rfl⟩ := Prod.mk.inj (Except.ok.inj h)
    obtain rfl := Option.some.inj hx
    rw [Spelled]
    exact literalAt_text hfalse
  · obtain ⟨hx, rfl⟩ := Prod.mk.inj (Except.ok.inj h)
    obtain rfl := Option.some.inj hx
    rw [Spelled]
    exact literalAt_text htrue
  · unfold parseOther at h
    cases hc : content[offset]? with
    | none =>
      rw [hc] at h
      cases h
    | some c =>
      rw [hc] at h
      dsimp only at h
      split_ifs at h with hquote hnumber hbracket hbrace
      · obtain ⟨⟨s, o'⟩, hs, h⟩ := bind_eq_ok.mp h
        obtain ⟨hx, rfl⟩ := Prod.mk.inj (Except.ok.inj h)
        obtain ⟨v, rfl, rfl⟩ := Option.map_eq_some_iff.mp hx
        rw [Spelled]
        exact parseString_to hs
      · obtain ⟨v, rfl, hv⟩ := parseNumber_to hc hnumber (Except.ok.inj h)
        rw [Spelled]
        exact hv
      · exact harray (hbracket ▸ hc) h
      · exact hobject (hbrace ▸ hc) h
      · cases h

/-- What `parse_value` returns is spelled by the characters it read. -/
theorem parseValue_to {room offset o : Nat} {x : Json}
    (h : parseValue content room offset = .ok (some x, o)) :
    Spelled room x (content.drop offset) (content.drop o) := by
  induction room generalizing offset o x with
  | zero =>
    rw [parseValue] at h
    exact parseLiterals_to (fun _ hnone => by cases hnone) (fun _ hnone => by cases hnone) h
  | succ room ih =>
    rw [parseValue] at h
    refine parseLiterals_to ?_ ?_ h
    · intro hbracket harray
      rw [parseArray, readAt_ok hbracket, ok_bind, if_neg (by simp)] at harray
      obtain ⟨xs, rfl, hxs⟩ := parseItems_to (P := Spelled room)
        (fun hitem => ⟨_, blankTo_skip content _, ih hitem⟩) hbracket harray
      rw [Spelled]
      exact hxs
    · intro hbrace hobject
      rw [parseObject, hbrace, if_neg (by simp)] at hobject
      obtain ⟨xs, rfl, hxs⟩ := parseItems_to (parseMember_to ih) hbrace hobject
      rw [Spelled]
      exact hxs

end Buffer

/-- A string has one NUL in memory. -/
theorem terminator_at {s : CString} {i : Nat} (h : s.mem[i]? = some 0) : i = s.chars.length := by
  have hlt := lt_of_getElem? h
  rw [CString.mem, List.length_append, List.length_singleton] at hlt
  by_contra hne
  rw [CString.mem, List.getElem?_append_left (by omega)] at h
  exact s.noNul (List.mem_of_getElem? h)

/-- A root in front of `rest`, behind blanks and perhaps a byte order mark. -/
def RootTo (root : Json) (s rest : List UInt8) : Prop :=
  ∃ mark s₁ s₂, (mark = [] ∨ mark = [0xEF, 0xBB, 0xBF]) ∧ s = mark ++ s₁ ∧ BlankTo s₁ s₂ ∧
    Spelled nestingLimit root s₂ rest

/-- What `cJSON_Parse` accepts is the spelling of the item that it returns, up to the position it
reports; where the caller asks for the terminator, nothing but blanks stands between the two. -/
theorem parse_accepts (value : CString) (requireNullTerminated : Bool) (root : Json)
    (position : Nat) (h : parseWithOpts value requireNullTerminated = .ok (some root, position)) :
    ∃ rest, RootTo root value.mem rest ∧
      (requireNullTerminated = false → rest = value.mem.drop position) ∧
      (requireNullTerminated = true → BlankTo rest [0] ∧ position = value.chars.length) := by
  have hmark : ∃ mark, (mark = [] ∨ mark = [0xEF, 0xBB, 0xBF]) ∧
      value.mem = mark ++ value.mem.drop (skipUtf8Bom value.mem) := by
    unfold skipUtf8Bom
    split_ifs with hbom
    · refine ⟨_, .inr hbom.2, (List.take_append_drop 3 _).symm⟩
    · exact ⟨[], .inl rfl, rfl⟩
  obtain ⟨mark, hmark, hmem⟩ := hmark
  unfold parseWithOpts parseWithLengthOpts at h
  rw [if_neg (by simp [CString.mem])] at h
  obtain ⟨⟨item, o⟩, hitem, h⟩ := bind_eq_ok.mp h
  cases item with
  | none => cases h
  | some item =>
    have hroot (hx : some item = some root) : RootTo root value.mem (value.mem.drop o) := by
      obtain rfl := Option.some.inj hx
      exact ⟨mark, _, _, hmark, hmem, blankTo_skip _ _, parseValue_to hitem⟩
    cases requireNullTerminated with
    | false =>
      obtain ⟨hx, rfl⟩ := Prod.mk.inj (Except.ok.inj h)
      exact ⟨_, hroot hx, fun _ => rfl, fun htrue => absurd htrue (by decide)⟩
    | true =>
      dsimp only at h
      rw [if_pos rfl] at h
      split_ifs at h with hnul
      · cases h
      · obtain ⟨hx, rfl⟩ := Prod.mk.inj (Except.ok.inj h)
        have hend := terminator_at (not_not.mp hnul)
        have hblank := blankTo_skip value.mem o
        rw [hend, CString.mem, List.drop_left] at hblank
        exact ⟨_, hroot hx, fun hfalse => absurd hfalse (by decide), fun _ => ⟨hblank, hend⟩⟩

/-- Neither a number without digits before the point is JSON nor an escape without digits, and
both are accepted. -/
theorem parse_accepts_loose : ∃ root rest,
    RootTo root (CString.lit "[-.5,\"\\u00zz\"] ").mem rest ∧ BlankTo rest [0] := by
  have hsome : ((parseWithOpts (.lit "[-.5,\"\\u00zz\"] ") true).toOption.bind Prod.fst).isSome =
      true := by decide +kernel
  obtain ⟨root, hroot⟩ := Option.isSome_iff_exists.mp hsome
  obtain ⟨⟨item, position⟩, hr, hitem⟩ := Option.bind_eq_some_iff.mp hroot
  cases hparse : parseWithOpts (.lit "[-.5,\"\\u00zz\"] ") true with
  | error fault =>
    rw [hparse] at hr
    cases hr
  | ok r =>
    rw [hparse] at hr
    obtain rfl : item = some root := hitem
    obtain rfl : r = (some root, position) := Option.some.inj hr
    obtain ⟨rest, hrest, -, hend⟩ := parse_accepts _ true root position hparse
    exact ⟨root, rest, hrest, (hend rfl).1⟩

end PeerToPeer.Parsing
